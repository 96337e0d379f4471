import HamixOS.HextFs.Alloc

namespace HamixOS.HextFs

open Lib Function Inode

/-!
# Inodes

The inode bitmaps and the inode tables; `Sys.readInode` and `Sys.writeInode` say that the tables are
one function from numbers to records.
-/

namespace Hext

variable {D : Type} [BlockDevice D]

/-- Mark an inode used. -/
def markInodeUsed (ino : Nat) (dir : Bool) : HextM D Unit := do
  let s ← get
  let g := (ino - 1) / s.inodesPerGroup
  let bit := (ino - 1) % s.inodesPerGroup
  let bitmapBlock := (s.group g).inodeBitmap
  let bitmap ← readBlock bitmapBlock
  if bitAt bitmap bit then pure ()
  else do
    stage bitmapBlock (setBit bitmap bit)
    modify (fun s => s.setGroup g (fun x => { x with
      freeInodes := x.freeInodes - 1
      usedDirs := if dir then x.usedDirs + 1 else x.usedDirs }))

/-- The search of `allocInode` in the groups `goal + step` for the remaining steps. -/
def allocInodeIn (goal : Nat) (dir : Bool) : List Nat → HextM D Nat
  | [] => throw .noSpace
  | step :: steps => do
    let s ← get
    let g := (goal + step) % s.groups.length
    if (s.group g).freeInodes = 0 then allocInodeIn goal dir steps
    else do
      let bitmap ← readBlock (s.group g).inodeBitmap
      let free := fun bit => !bitAt bitmap bit && decide (firstIno ≤ g * s.inodesPerGroup + bit + 1)
      match (List.range s.inodesPerGroup).find? free with
      | some bit => do
        let ino := g * s.inodesPerGroup + bit + 1
        markInodeUsed ino dir
        pure ino
      | none => allocInodeIn goal dir steps

/-- Take a free inode, in group `goal` if it has one. -/
def allocInode (goal : Nat) (dir : Bool) : HextM D Nat := do
  let s ← get
  allocInodeIn goal dir (List.range s.groups.length)

/-- Give an inode back. -/
def freeInode (ino : Nat) (dir : Bool) : HextM D Unit := do
  let s ← get
  let g := (ino - 1) / s.inodesPerGroup
  let bit := (ino - 1) % s.inodesPerGroup
  let bitmapBlock := (s.group g).inodeBitmap
  let bitmap ← readBlock bitmapBlock
  if bitAt bitmap bit then do
    stage bitmapBlock (clearBit bitmap bit)
    modify (fun s => s.setGroup g (fun x => { x with
      freeInodes := x.freeInodes + 1
      usedDirs := if dir then x.usedDirs - 1 else x.usedDirs }))
  else pure ()

/-- The block of an inode and its offset there. -/
def inodeLocation (s : Hext D) (ino : Nat) : Except Error (Nat × Nat) :=
  if ino = 0 ∨ s.inodesCount < ino then .error .corrupt
  else
    let g := (ino - 1) / s.inodesPerGroup
    let index := (ino - 1) % s.inodesPerGroup
    let perBlock := s.bs / inodeSize
    .ok ((s.group g).inodeTable + index / perBlock, index % perBlock * inodeSize)

/-- Read an inode record. -/
def readInode (ino : Nat) : HextM D Inode := do
  let s ← get
  match s.inodeLocation ino with
  | .error e => throw e
  | .ok (block, offset) => do
    let data ← readBlock block
    pure (Inode.decode (slice data offset inodeSize))

/-- Write an inode record. -/
def writeInode (ino : Nat) (inode : Inode) : HextM D Unit := do
  let s ← get
  match s.inodeLocation ino with
  | .error e => throw e
  | .ok (block, offset) => do
    let data ← readBlock block
    stage block (splice data offset inode.encode)

end Hext

open Hext

namespace Sys

variable {e : Epoch} {s s' : Hext Disk}

/-- Staging a metadata block that is no block bitmap, together with new counters of inodes. -/
theorem stageMeta (h : Sys e s) {b : Nat} {d : Bytes} {gs : List Group} (hb : e.geometry.InRange b)
    (hm : e.geometry.Meta b) (hd : d.length = e.geometry.bs)
    (hnb : ∀ g, b ≠ e.geometry.blockBitmap g)
    (hl : e.geometry.Lays { s.staged b d with groups := gs })
    (hfreeB : ∀ g < e.geometry.groups, (gs.getD g default).freeBlocks = (s.group g).freeBlocks)
    (hpad : ∀ g < e.geometry.groups, ∀ k, e.geometry.ipg ≤ k → k < e.geometry.bpg →
      bitAt ((s.staged b d).blk (e.geometry.inodeBitmap g)) k = true)
    (hfreeI : ∀ g < e.geometry.groups, (gs.getD g default).freeInodes
      = clearCount ((s.staged b d).blk (e.geometry.inodeBitmap g)) e.geometry.bpg) :
    Sys e { s.staged b d with groups := gs } := by
  have hbb : ∀ g, (s.staged b d).blk (e.geometry.blockBitmap g) = s.blk (e.geometry.blockBitmap g) := by
    intro g
    rw [blk_staged, if_neg (hnb g).symm]
  have hused : (e.geometry.view { s.staged b d with groups := gs }).used
      = (e.geometry.view s).used := view_used_congr (fun g _ => hbb g)
  refine ⟨?_, hl, h.journal, h.seq, h.sb, h.now_lt, ?_, ?_, hpad, ?_, hfreeI, ?_, ?_, ?_, h.wrote⟩
  · have ht := h.tame.staged (b := b) (d := d) (by rw [h.lays.blocks]; exact hb.2)
      (by rw [hd, h.lays.bs])
    exact ht.congr rfl rfl rfl rfl rfl
  · intro b' d' hget
    rw [hused]
    have hget' : (s.cache.insert b d)[b']? = some d' := hget
    rw [Std.TreeMap.getElem?_insert] at hget'
    by_cases hbb' : b = b'
    · rw [← hbb']
      exact h.metaUsed b hb hm
    · rw [if_neg (by simpa using hbb')] at hget'
      exact h.cached b' d' hget'
  · intro g hg r hr hle
    show bitAt ((s.staged b d).blk _) r = true
    rw [hbb]
    exact h.padBlocks g hg r hr hle
  · intro g hg
    show (gs.getD g default).freeBlocks = clearCount ((s.staged b d).blk _) _
    rw [hfreeB g hg, hbb]
    exact h.freeBlocks g hg
  · rw [hused]
    exact h.metaUsed
  · rw [hused]
    exact h.fresh
  · rw [hused]
    exact h.kept

/-! ### Reading and writing records -/

theorem inodeLocation_eq (h : Sys e s) {i : Nat} (hi : e.geometry.Ino i) :
    s.inodeLocation i = .ok (e.geometry.inoBlock i, e.geometry.inoOffset i) := by
  have hg := e.geometry.inoGroup_lt hi
  obtain ⟨hlo, hhi⟩ := hi
  rw [Hext.inodeLocation, if_neg (by rw [h.lays.inodes]; omega)]
  have hgroup : (i - 1) / s.inodesPerGroup = e.geometry.inoGroup i := by
    rw [h.lays.ipg]
    rfl
  have hindex : (i - 1) % s.inodesPerGroup = e.geometry.inoIndex i := by
    rw [h.lays.ipg]
    rfl
  simp only [hgroup, hindex, h.lays.inodeTable _ hg, h.lays.bs]
  rfl

/-- Reading a record. -/
theorem readInode (h : Sys e s) {i : Nat} (hi : e.geometry.Ino i) :
    Post (Hext.readInode i) s
      (fun n s' => n = (e.geometry.view s).inode i ∧ Same s s' ∧ Sys e s') (fun _ _ => False) := by
  refine Post.get ?_
  rw [h.inodeLocation_eq hi]
  refine Post.seq (h.readBlock (e.geometry.inoBlock_inRange hi).2) ?_
  rintro d s1 ⟨rfl, hs1, hsys1⟩
  refine Post.pure ⟨?_, hs1, hsys1⟩
  simp [Geometry.view, hi]

/-- The state with record `n` written for inode `i`, up to clean copies. -/
def inked (s : Hext Disk) (G : Geometry) (i : Nat) (n : Inode) : Hext Disk :=
  s.staged (G.inoBlock i) (splice (s.blk (G.inoBlock i)) (G.inoOffset i) n.encode)

theorem inked_sys (h : Sys e s) {i : Nat} (hi : e.geometry.Ino i) {n : Inode} (hn : n.Fits) :
    Sys e (inked s e.geometry i n) ∧ e.geometry.view (inked s e.geometry i n)
      = { e.geometry.view s with inode := update (e.geometry.view s).inode i n } := by
  have hr := e.geometry.inoBlock_inRange hi
  have hlen := h.length_blk hr.2
  have henc := length_encode hn.len
  have hoff := e.geometry.inoOffset_le i
  rw [inodeSize] at hoff
  have hfit : e.geometry.inoOffset i + n.encode.length ≤ (s.blk (e.geometry.inoBlock i)).length := by
    rw [hlen, henc]
    exact hoff
  have hother : ∀ b, b ≠ e.geometry.inoBlock i → (inked s e.geometry i n).blk b = s.blk b := by
    intro b hb
    rw [inked, blk_staged, if_neg hb]
  constructor
  · refine h.stageMeta hr (e.geometry.inoBlock_meta i) ((length_splice hfit).trans hlen)
      (fun g => (e.geometry.blockBitmap_ne_inoBlock g i).symm)
      (h.lays.congr rfl rfl rfl rfl rfl rfl rfl) (fun g _ => rfl) ?_ ?_
    · intro g hg k hk hk'
      rw [blk_staged, if_neg (e.geometry.inodeBitmap_ne_inoBlock g i)]
      exact h.padInodes g hg k hk hk'
    · intro g hg
      rw [blk_staged, if_neg (e.geometry.inodeBitmap_ne_inoBlock g i)]
      exact h.freeInodes g hg
  · apply View.ext
    · exact view_used_congr (fun g _ => hother _ (e.geometry.blockBitmap_ne_inoBlock g i))
    · exact view_iused_congr (fun g _ => hother _ (e.geometry.inodeBitmap_ne_inoBlock g i))
    · funext j
      show _ = update (e.geometry.view s).inode i n j
      by_cases hij : j = i
      · subst hij
        rw [update_self]
        show (if e.geometry.Ino j then decode (slice ((inked s e.geometry j n).blk _) _ _)
          else _) = n
        have hslice := slice_splice_self hfit
        rw [henc] at hslice
        rw [if_pos hi, inked, blk_staged, if_pos rfl]
        show decode (slice (splice _ _ _) _ 128) = n
        rw [hslice]
        exact decode_encode hn
      · rw [update_of_ne hij]
        by_cases hj : e.geometry.Ino j
        · show (if e.geometry.Ino j then decode (slice ((inked s e.geometry i n).blk _) _ _)
            else _) = (if e.geometry.Ino j then _ else _)
          rw [if_pos hj, if_pos hj]
          by_cases hb : e.geometry.inoBlock j = e.geometry.inoBlock i
          · have hap := e.geometry.ino_apart hj.1 hi.1 hij hb
            rw [hb, inked, blk_staged, if_pos rfl, slice_splice_of_disjoint hfit]
            rw [henc]
            rw [inodeSize] at hap ⊢
            omega
          · rw [hother _ hb]
        · simp [Geometry.view, hj]
    · apply view_data_congr
      intro b hb
      apply hother
      rintro rfl
      exact hb.2 (e.geometry.inoBlock_meta i)
    · exact view_dirs_congr (fun g _ => rfl)

/-- What writing record `n` for inode `i` does. -/
structure Inks (e : Epoch) (s : Hext Disk) (i : Nat) (n : Inode) (s' : Hext Disk) : Prop where
  sys : Sys e s'
  view : e.geometry.view s' = { e.geometry.view s with
    inode := Function.update (e.geometry.view s).inode i n }
  dev : s'.dev = s.dev
  cache : ∀ b', e.geometry.Room b' → s'.cache[b']? = s.cache[b']?
  freed : s'.freed = s.freed

namespace Inks

variable {i : Nat} {n : Inode}

section

variable (h : Inks e s i n s')

include h

theorem used : (e.geometry.view s').used = (e.geometry.view s).used := by
  rw [h.view]

theorem inode :
    (e.geometry.view s').inode = update (e.geometry.view s).inode i n := by
  rw [h.view]

theorem data : (e.geometry.view s').data = (e.geometry.view s).data := by
  rw [h.view]

theorem self : (e.geometry.view s').inode i = n := by
  rw [h.inode, update_self]

end

end Inks

/-- Writing a record. -/
theorem writeInode (h : Sys e s) {i : Nat} (hi : e.geometry.Ino i) {n : Inode} (hn : n.Fits) :
    Post (Hext.writeInode i n) s (fun _ s' => Inks e s i n s') (fun _ _ => False) := by
  refine Post.get ?_
  rw [h.inodeLocation_eq hi]
  refine Post.seq (h.readBlock (e.geometry.inoBlock_inRange hi).2) ?_
  rintro d s1 ⟨rfl, hs1, hsys1⟩
  obtain ⟨hsys, hview⟩ := inked_sys hsys1 hi hn
  rw [inked, hs1.blk] at hsys hview
  rw [view_same hs1] at hview
  obtain ⟨c, rfl⟩ := hs1
  refine Post.of_ok (stage_run _ _ _) ⟨hsys, hview, rfl, ?_, rfl⟩
  intro b' hb'
  show (s.cache.insert _ _)[b']? = _
  rw [Std.TreeMap.getElem?_insert, if_neg]
  intro heq
  rw [Nat.compare_eq_eq] at heq
  exact hb'.2 (heq ▸ e.geometry.inoBlock_meta _)

end Sys

end HamixOS.HextFs

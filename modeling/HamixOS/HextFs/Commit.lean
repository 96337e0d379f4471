import HamixOS.HextFs.Mount

namespace HamixOS.HextFs

open Lib

/-!
# Committing and formatting

`commit` puts the superblock and the group descriptors beside the staged blocks and writes
everything through the journal, in as many transactions as it takes.  `format` lays a volume out,
makes the root directory, the journal and `lost+found`, and writes what it staged straight to its
place.
-/

/-- The descriptor of a group. -/
def Group.encode (g : Group) : Bytes :=
  let out := put32 (zeros 32) 0 g.blockBitmap
  let out := put32 out 4 g.inodeBitmap
  let out := put32 out 8 g.inodeTable
  let out := put16 out 12 g.freeBlocks
  let out := put16 out 14 g.freeInodes
  put16 out 16 g.usedDirs

namespace Hext

variable {D : Type} [BlockDevice D]

def encodeGroups (s : Hext D) : Bytes := s.groups.flatMap Group.encode

/-- The superblock with the current counters and its checksum. -/
def stampCounters (s : Hext D) : Hext D :=
  let sb := put32 s.sb 12 ((s.groups.map Group.freeBlocks).sum % 2 ^ 32)
  let sb := put32 sb 16 ((s.groups.map Group.freeInodes).sum % 2 ^ 32)
  let sb := put32 sb 48 s.now
  let sb := put16 sb 90 0
  let sb := put16 sb 58 1
  let sb := put32 sb (hextOffset + 16) 0
  { s with sb := put32 sb (hextOffset + 16) (crc32 (sb.take (hextOffset + 16))) }

/-- Stage consecutive blocks, each with a new beginning. -/
def stageChunks : (block : Nat) → List Bytes → HextM D Unit
  | _, [] => pure ()
  | block, chunk :: rest => do
    let data ← readBlock block
    stage block (splice data 0 chunk)
    stageChunks (block + 1) rest

def stageSuperblockAndGroups : HextM D Unit := do
  modify stampCounters
  let s ← get
  let sbBlock := if s.bs = 1024 then 1 else 0
  let block ← readBlock sbBlock
  stage sbBlock (splice block (if s.bs = 1024 then 0 else 1024) s.sb)
  stageChunks (s.firstDataBlock + 1) (chunks s.bs s.encodeGroups)

/-! ### Commit -/

def dirty (s : Hext D) : Bool := !s.cache.isEmpty || decide (s.freed ≠ ∅)

/-- How many of `n` entries go into the next transaction: as many as the journal has room for,
together with their descriptors; `taken` of them are known to fit. -/
def fitting (capacity room : Nat) : (n taken : Nat) → Nat
  | 0, taken => taken
  | n + 1, taken =>
    if room < divCeil (taken + 1) capacity + (taken + 1) then taken else fitting capacity room n (taken + 1)

/-- The loop of `commit` over the staged blocks. -/
def writeTransactions : (fuel : Nat) → List (Nat × Bytes) → HextM D Unit
  | 0, _ => pure ()
  | _ + 1, [] => pure ()
  | fuel + 1, entry :: entries => do
    let s ← get
    let n := fitting (descriptorCapacity s.bs) (s.journal.length - 2) (entry :: entries).length 0
    if n = 0 then throw .tooLarge
    else do
      writeTransaction ((entry :: entries).take n)
      writeTransactions fuel ((entry :: entries).drop n)

def commit : HextM D Unit := do
  let s ← get
  if s.dirty then do
    stageSuperblockAndGroups
    flushDevice
    let s ← get
    modify (fun s => { s with cache := ∅ })
    writeTransactions s.cache.toList.length s.cache.toList
    modify (fun s => { s with fresh := ∅, freed := ∅ })
  else modify (fun s => { s with fresh := ∅ })

/-- Write the staged blocks to their places, without the journal. -/
def flushMetadataDirect : HextM D Unit := do
  stageSuperblockAndGroups
  let s ← get
  modify (fun s => { s with cache := ∅ })
  writeHome s.cache.toList

/-! ### Format -/

structure FormatOptions where
  label : Bytes
  seed : Nat
  now : Nat

/-- The numbers `format` computes from the size of the device. -/
structure Shape where
  bs : Nat
  first : Nat
  blocks : Nat
  groups : Nat
  gdtBlocks : Nat
  inodesPerGroup : Nat

namespace Shape

def blocksPerGroup (p : Shape) : Nat := p.bs * 8

def itableBlocks (p : Shape) : Nat := p.inodesPerGroup / (p.bs / inodeSize)

/-- The blocks of group `g` before its bitmaps. -/
def copies (p : Shape) (g : Nat) : Nat := if isSparseGroup g then 1 + p.gdtBlocks else 0

def overhead (p : Shape) (g : Nat) : Nat := p.copies g + 2 + p.itableBlocks

def base (p : Shape) (g : Nat) : Nat := p.first + g * p.blocksPerGroup

/-- The blocks of the volume that lie in group `g`. -/
def groupBlocks (p : Shape) (g : Nat) : Nat := min (p.blocks - p.base g) p.blocksPerGroup

def group (p : Shape) (g : Nat) : Group where
  blockBitmap := p.base g + p.copies g
  inodeBitmap := p.base g + p.copies g + 1
  inodeTable := p.base g + p.copies g + 2
  freeBlocks := (p.groupBlocks g - p.overhead g) % 2 ^ 16
  freeInodes := p.inodesPerGroup % 2 ^ 16
  usedDirs := 0

/-- The layout for a device of `total` bytes; a last group without room for 64 blocks beside its
tables is left out. -/
def ofSize (total : Nat) : Except Error Shape :=
  if total < 2 * 1024 * 1024 then .error .noSpace
  else
    let bs := if total ≤ 512 * 1024 * 1024 then 1024 else 4096
    let first := if bs = 1024 then 1 else 0
    let blocks := min (total / bs) (2 ^ 32 - 2)
    let perGroup := bs * 8
    let perBlock := bs / inodeSize
    let groups := divCeil (blocks - first) perGroup
    let gdtBlocks := divCeil (groups * 32) bs
    let inodes := perGroup * bs / (if bs = 1024 then 4096 else 16384)
    let inodes := divCeil inodes perBlock * perBlock
    let inodes := max (min inodes perGroup) (perBlock * 4)
    let p : Shape := ⟨bs, first, blocks, groups, gdtBlocks, inodes⟩
    if blocks - p.base (groups - 1) < p.overhead (groups - 1) + 64 then
      if groups = 1 then .error .noSpace
      else .ok { p with groups := groups - 1, blocks := first + (groups - 1) * perGroup }
    else .ok p

end Shape

/-- A buffer of zeros with the bits of `bits` set. -/
def bitsSet (bs : Nat) (bits : List Nat) : Bytes := bits.foldl setBit (zeros bs)

/-- The zeros of an inode table, 64 blocks at a time. -/
def zeroTable : (fuel block count : Nat) → HextM D Unit
  | 0, _, _ => pure ()
  | fuel + 1, block, count =>
    if count = 0 then pure ()
    else do
      let s ← get
      let n := min count 64
      writeRaw block (zeros (s.bs * n))
      zeroTable fuel (block + n) (count - n)

/-- Lay out group `g`. -/
def formatGroup (p : Shape) (g : Nat) : HextM D Unit := do
  modify (fun s => { s with groups := s.groups ++ [p.group g] })
  let bits := List.range (p.overhead g) ++ List.range' (p.groupBlocks g) (p.bs * 8 - p.groupBlocks g)
  writeRaw (p.group g).blockBitmap (bitsSet p.bs bits)
  let bits := List.range' p.inodesPerGroup (p.bs * 8 - p.inodesPerGroup)
  writeRaw (p.group g).inodeBitmap (bitsSet p.bs bits)
  zeroTable p.itableBlocks (p.group g).inodeTable p.itableBlocks

/-- One step of the generator behind the volume's id. -/
def xorshift (state : UInt64) : UInt64 :=
  let state := state ^^^ (state <<< 13)
  let state := state ^^^ (state >>> 7)
  state ^^^ (state <<< 17)

def superblock (p : Shape) (o : FormatOptions) : Bytes :=
  let log := (p.bs / 1024).log2
  let sb := put32 (zeros 1024) 0 (p.inodesPerGroup * p.groups)
  let sb := put32 sb 4 p.blocks
  let sb := put32 sb 8 (p.blocks / 100)
  let sb := put32 sb 20 p.first
  let sb := put32 sb 24 log
  let sb := put32 sb 28 log
  let sb := put32 sb 32 p.blocksPerGroup
  let sb := put32 sb 36 p.blocksPerGroup
  let sb := put32 sb 40 p.inodesPerGroup
  let sb := put32 sb 44 o.now
  let sb := put32 sb 48 o.now
  let sb := put16 sb 54 0xFFFF
  let sb := put16 sb 56 ext2Magic
  let sb := put16 sb 58 1
  let sb := put16 sb 60 1
  let sb := put32 sb 64 o.now
  let sb := put32 sb 76 1
  let sb := put32 sb 84 firstIno
  let sb := put16 sb 88 inodeSize
  let sb := put32 sb 96 featureIncompatFiletype
  let sb := put32 sb 100 (featureRoSparseSuper ||| featureRoLargeFile)
  let seed := (UInt64.ofNat o.seed) ^^^ 0x9E3779B97F4A7C15
  let id := (List.range 16).map fun i => (xorshift^[i + 1] seed).toUInt8
  let sb := splice sb 104 id
  let sb := splice sb 120 (o.label.take 16)
  let sb := put32 sb hextOffset hextMagic
  let sb := put32 sb (hextOffset + 4) hextVersion
  put32 sb (hextOffset + 8) journalIno

/-- The volume before its first group is laid out. -/
def unformatted (dev : D) (p : Shape) (now : Nat) : Hext D where
  dev := dev
  bs := p.bs
  sb := zeros 1024
  groups := []
  blocksPerGroup := p.blocksPerGroup
  inodesPerGroup := p.inodesPerGroup
  firstDataBlock := p.first
  blocksCount := p.blocks
  inodesCount := p.inodesPerGroup * p.groups
  cache := ∅
  clean := ∅
  fresh := ∅
  freed := ∅
  journal := []
  nextSeq := 1
  replayed := false
  now := now
  hint := 0

/-- The copy of the superblock and of the descriptors in group `g`. -/
def writeBackup (gdtBlocks g : Nat) : HextM D Unit := do
  let s ← get
  let base := s.firstDataBlock + g * s.blocksPerGroup
  writeRaw base (splice (zeros s.bs) 0 (put16 s.sb 90 g))
  let gdt := s.encodeGroups
  (List.range gdtBlocks).forM fun i =>
    writeRaw (base + 1 + i) (splice (zeros s.bs) 0 (slice gdt (i * s.bs) (min s.bs (gdt.length - i * s.bs))))

def writeBackups (gdtBlocks : Nat) : HextM D Unit := do
  let s ← get
  (List.range' 1 (s.groups.length - 1)).forM fun g =>
    if isSparseGroup g then writeBackup gdtBlocks g else pure ()

/-- The directory `/`. -/
def formatRoot (now : Nat) : HextM D Unit := do
  writeInode rootIno { mode := sIfdir ||| 0o755, links := 2, atime := now, ctime := now, mtime := now }
  modify (fun s => s.setGroup 0 (fun g => { g with usedDirs := g.usedDirs + 1 }))
  initDirectory rootIno rootIno

/-- The journal. -/
def formatJournal (p : Shape) (now : Nat) : HextM D Unit := do
  let len := min (min (max (p.blocks / 64) 256) 8192) (p.blocks / 4)
  let blocks ← allocBlocks 0 len
  writeRaw (blocks.headD 0) (headerBlock p.bs 1)
  let inode : Inode := { mode := sIfreg ||| 0o600, links := 1, atime := now, ctime := now, mtime := now }
  let (inode, indirect) ← buildPointers inode blocks true
  writeInode journalIno { inode with size := len * p.bs, blocks512 := (len + indirect) * p.bs / 512 % 2 ^ 32 }
  modify (fun s => { s with journal := blocks })

/-- `format` on the state `unformatted`. -/
def formatVolume (p : Shape) (o : FormatOptions) : HextM D Unit := do
  (List.range p.groups).forM (formatGroup p)
  modify (fun s => { s with sb := superblock p o })
  (List.range' 1 (firstIno - 1)).forM fun ino => markInodeUsed ino false
  formatRoot o.now
  formatJournal p o.now
  let _ ← create rootIno "lost+found" (UInt16.ofNat (sIfdir ||| 0o700)) 0 0
  flushMetadataDirect
  writeBackups p.gdtBlocks
  modify (fun s => { s with fresh := ∅, freed := ∅ })
  flushDevice

/-- Format a device. -/
def format (dev : D) (o : FormatOptions) : Except Error (EStateM.Result Error (Hext D) Unit) :=
  (Shape.ofSize (BlockDevice.sectors dev * sectorSize)).map fun p => formatVolume p o (unformatted dev p o.now)

end Hext

end HamixOS.HextFs

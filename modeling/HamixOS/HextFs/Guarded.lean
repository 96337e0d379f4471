import HamixOS.Lib.Checked
import HamixOS.HextFs.Range

namespace HamixOS.HextFs.Guarded

open Lib

/-!
# Mounting and reading with the panics in sight

The other modules read a volume with lists, where an index that is out of range has a default.  Here
`mount` and the requests that only read are written once more with every check the language makes: each
index into a vector, each range of a slice and each unsigned difference is one of `Checked`, and a loop
whose fuel ends before it does stops as `endless`.  Sums of 32-bit numbers wrap, as in a release build.
-/

open Checked

variable {D : Type} [BlockDevice D]

/-- A computation on a volume that may panic. -/
abbrev GuardM (D : Type) := CheckedM Error (Hext D)

def word16 (b : Bytes) (o : Nat) : GuardM D Nat := word 2 b o

def word32 (b : Bytes) (o : Nat) : GuardM D Nat := word 4 b o

def word64 (b : Bytes) (o : Nat) : GuardM D Nat := word 8 b o

def readBlock (block : Nat) : GuardM D Bytes := lift (Hext.readBlock block)

/-- Store a buffer; the clean copies to drop are looked up in an ordered map, where a range must not
end before it starts. -/
def writeRaw (block : Nat) (buf : Bytes) : GuardM D Unit := do
  let s ← get
  let count := divCeil buf.length s.bs % 2 ^ 32
  if s.clean.isEmpty = false ∧ (block + max count 1) % 2 ^ 32 < block then throw .outOfRange
  else lift (Hext.writeRaw block buf)

/-! ### Inodes -/

/-- The words of a record: where each starts, and its length. -/
def inodeWords : List (Nat × Nat) :=
  (List.range 15).map (fun i => (40 + i * 4, 4)) ++
    [(0, 2), (2, 2), (120, 2), (4, 4), (108, 4), (8, 4), (12, 4), (16, 4), (20, 4), (24, 2), (122, 2), (26, 2),
      (28, 4), (32, 4)]

/-- Read a record. -/
def decode (b : Bytes) : GuardM D Inode := do
  let _ ← inodeWords.mapM (fun w => word w.2 b w.1)
  pure (Inode.decode b)

/-- The block of an inode and its offset there. -/
def inodeLocation (ino : Nat) : GuardM D (Nat × Nat) := do
  let s ← get
  if ino = 0 ∨ s.inodesCount < ino then fail .corrupt
  else do
    let before ← minus ino 1
    let g := before / s.inodesPerGroup
    let i := before % s.inodesPerGroup
    let perBlock := s.bs / inodeSize
    let group ← index s.groups g
    pure ((group.inodeTable + i / perBlock) % 2 ^ 32, i % perBlock * inodeSize)

/-- Read an inode record. -/
def readInode (ino : Nat) : GuardM D Inode := do
  let (block, offset) ← inodeLocation ino
  let data ← readBlock block
  let record ← cut data offset (offset + inodeSize)
  decode record

/-! ### Block lists -/

/-- The direct blocks of an inode, in the slots `slots`. -/
def collectDirect (inode : Inode) (limit : Nat) : (slots data : List Nat) → GuardM D (List Nat)
  | [], data => pure data
  | i :: slots, data =>
    if limit ≤ data.length then pure data
    else do
      let block ← index inode.block i
      if block = 0 then pure data else collectDirect inode limit slots (data ++ [block])

/-- Append the trees of the remaining slots. -/
def collectSlots (inode : Inode) (limit : Nat) : List (Nat × Nat) → List Nat × List Nat →
    GuardM D (List Nat × List Nat)
  | [], acc => pure acc
  | (slot, depth) :: slots, acc =>
    if limit ≤ acc.1.length then pure acc
    else do
      let root ← index inode.block slot
      let acc ← lift (Hext.collectTree limit depth root acc)
      collectSlots inode limit slots acc

/-- The data blocks and the pointer blocks of an inode. -/
def blockListSplit (inode : Inode) : GuardM D (List Nat × List Nat) := do
  let s ← get
  let limit := divCeil inode.size s.bs
  let direct ← collectDirect inode limit (List.range 12) []
  let (data, ptrs) ← collectSlots inode limit pointerSlots (direct, [])
  pure (data.take limit, ptrs)

/-- The data blocks of an inode. -/
def blockList (inode : Inode) : GuardM D (List Nat) := do
  let (data, _) ← blockListSplit inode
  pure data

/-! ### Directories -/

/-- The entries of a block from `offset` on, appended to `out`. -/
def dirEntriesFrom (bs : Nat) (data : Bytes) : (fuel offset : Nat) → (out : List DirEntry) → GuardM D (List DirEntry)
  | 0, _, _ => throw .endless
  | fuel + 1, offset, out =>
    if bs < offset + 8 then pure out
    else do
      let child ← word32 data offset
      let recLen ← word16 data (offset + 4)
      let nameLen ← index data (offset + 6)
      if recLen < 8 ∨ bs < offset + recLen then fail .corrupt
      else if child ≠ 0 ∧ offset + 8 + nameLen.toNat ≤ bs then do
        let bytes ← cut data (offset + 8) (offset + 8 + nameLen.toNat)
        let name := fromUtf8Lossy bytes
        if name ≠ "." ∧ name ≠ ".." then do
          let fileType ← index data (offset + 7)
          dirEntriesFrom bs data fuel (offset + recLen) (out ++ [{ name, ino := child, fileType := fileType.toNat }])
        else dirEntriesFrom bs data fuel (offset + recLen) out
      else dirEntriesFrom bs data fuel (offset + recLen) out

/-- The entries of a list of blocks, appended to `out`. -/
def readDirBlocks : List Nat → (out : List DirEntry) → GuardM D (List DirEntry)
  | [], out => pure out
  | block :: blocks, out => do
    let data ← readBlock block
    let s ← get
    let out ← dirEntriesFrom s.bs data s.bs 0 out
    readDirBlocks blocks out

/-- The entries of a directory. -/
def readDir (ino : Nat) : GuardM D (List DirEntry) := do
  let inode ← readInode ino
  if inode.isDir then do
    let blocks ← blockList inode
    readDirBlocks blocks []
  else fail .notDir

/-- The inode of a name in a directory. -/
def lookup (dir : Nat) (name : String) : GuardM D (Option Nat) := do
  let entries ← readDir dir
  pure ((entries.find? (fun x => x.name = name)).map DirEntry.ino)

/-- The inode of a path, from an inode on. -/
def resolveFrom (ino : Nat) : List String → GuardM D Nat
  | [] => pure ino
  | part :: parts => do
    match ← lookup ino part with
    | none => fail .notFound
    | some child => resolveFrom child parts

/-- The inode of a path. -/
def resolve (path : String) : GuardM D Nat :=
  resolveFrom rootIno ((path.splitOn "/").filter (fun p => p ≠ ""))

/-! ### Files -/

/-- The number of blocks from `i` on, up to `last`, that follow one another on the device and are not
staged. -/
def extendRun (blocks : List Nat) (last i : Nat) : (fuel run : Nat) → GuardM D Nat
  | 0, _ => throw .endless
  | fuel + 1, run => do
    let s ← get
    if i + run < last then do
      let next ← index blocks (i + run)
      let start ← index blocks i
      if next = (start + run) % 2 ^ 32 ∧ run < 256 ∧ s.cache.contains ((start + run) % 2 ^ 32) = false then
        extendRun blocks last i fuel (run + 1)
      else pure run
    else pure run

/-- Fill `out` with the contents of the blocks from `i` on, one device read for each run. -/
def readRuns (blocks : List Nat) : (fuel i : Nat) → (out : Bytes) → GuardM D Bytes
  | 0, _, _ => throw .endless
  | fuel + 1, i, out =>
    if blocks.length ≤ i then pure out
    else do
      let s ← get
      let run ← extendRun blocks blocks.length i blocks.length 1
      let start ← index blocks i
      match s.cache[start]? with
      | some cached => do
        let out ← overwrite out (i * s.bs) ((i + 1) * s.bs) cached
        readRuns blocks fuel (i + 1) out
      | none => do
        let room ← cut out (i * s.bs) ((i + run) * s.bs)
        let buf ← lift (Hext.readRaw start room.length)
        let out ← overwrite out (i * s.bs) ((i + run) * s.bs) buf
        readRuns blocks fuel (i + run) out

/-- The content of an inode. -/
def readInodeData (inode : Inode) : GuardM D Bytes := do
  let blocks ← blockList inode
  let s ← get
  let out ← readRuns blocks (blocks.length + 1) 0 (zeros (blocks.length * s.bs))
  pure (out.take inode.size)

/-- The content of a file. -/
def readFile (ino : Nat) : GuardM D Bytes := do
  let inode ← readInode ino
  if inode.isDir then fail .isDir else readInodeData inode

/-- The block list of a file and its size. -/
def fileBlocks (ino : Nat) : GuardM D (List Nat × Nat) := do
  let inode ← readInode ino
  if inode.isDir then fail .isDir
  else do
    let blocks ← blockList inode
    pure (blocks, inode.size)

/-- Fill `scratch` with the contents of the blocks from `i` up to `last`, where block 0 stands for
zeros; `scratch` starts at block `first`. -/
def rangeRuns (blocks : List Nat) (first last : Nat) : (fuel i : Nat) → (scratch : Bytes) → GuardM D Bytes
  | 0, _, _ => throw .endless
  | fuel + 1, i, scratch =>
    if last ≤ i then pure scratch
    else do
      let s ← get
      let start ← index blocks i
      match s.cache[start]? with
      | some cached => do
        let back ← minus i first
        let scratch ← overwrite scratch (back * s.bs) (back * s.bs + s.bs) cached
        rangeRuns blocks first last fuel (i + 1) scratch
      | none => do
        let run ← extendRun blocks last i last 1
        let back ← minus i first
        if start ≠ 0 then do
          let room ← cut scratch (back * s.bs) (back * s.bs + run * s.bs)
          let buf ← lift (Hext.readRaw start room.length)
          let scratch ← overwrite scratch (back * s.bs) (back * s.bs + run * s.bs) buf
          rangeRuns blocks first last fuel (i + run) scratch
        else rangeRuns blocks first last fuel (i + run) scratch

/-- At most `want` bytes from `offset` on of a file of `size` bytes. -/
def readRange (blocks : List Nat) (size offset want : Nat) : GuardM D Bytes :=
  if size ≤ offset then pure []
  else do
    let s ← get
    let left ← minus size offset
    let len := min want left
    let first := offset / s.bs
    let last := min (divCeil (offset + len) s.bs) blocks.length
    if last ≤ first then pure []
    else do
      let count ← minus last first
      let scratch ← rangeRuns blocks first last (count + 1) first (zeros (count * s.bs))
      let skip ← minus offset (first * s.bs)
      let room ← minus scratch.length skip
      let n := min len room
      let piece ← cut scratch skip (skip + n)
      overwrite (zeros want) 0 n piece

/-! ### Mounting -/

/-- Read consecutive blocks. -/
def readBlocks : (block count : Nat) → GuardM D Bytes
  | _, 0 => pure []
  | block, count + 1 => do
    let data ← readBlock (block % 2 ^ 32)
    let rest ← readBlocks (block + 1) count
    pure (data ++ rest)

/-- The descriptor of a group at offset `o` of a buffer. -/
def decodeGroup (gdt : Bytes) (o : Nat) : GuardM D Group := do
  let blockBitmap ← word32 gdt o
  let inodeBitmap ← word32 gdt (o + 4)
  let inodeTable ← word32 gdt (o + 8)
  let freeBlocks ← word16 gdt (o + 12)
  let freeInodes ← word16 gdt (o + 14)
  let usedDirs ← word16 gdt (o + 16)
  pure { blockBitmap, inodeBitmap, inodeTable, freeBlocks, freeInodes, usedDirs }

/-- Read the group descriptors. -/
def loadGroups (groupsCount : Nat) : GuardM D Unit := do
  let s ← get
  let gdt ← readBlocks (s.firstDataBlock + 1) (divCeil (groupsCount * 32) s.bs)
  let groups ← (List.range groupsCount).mapM (fun g => decodeGroup gdt (g * 32))
  modify (fun s => { s with groups })

/-- Write the header of the journal. -/
def writeJournalHeader : GuardM D Unit := do
  let s ← get
  let header ← store 4 (zeros s.bs) 0 journalHeader
  let header ← store 4 header 4 1
  let header ← store 8 header 8 s.nextSeq
  let head ← cut header 0 16
  let header ← store 4 header 16 (crc32 head)
  let block ← index s.journal 0
  writeRaw block header

/-- Read the blocks of a descriptor's targets; nothing if the journal ends or a target is none of
the volume. -/
def readTargets : (position : Nat) → List Nat → (writes : List (Nat × Bytes)) →
    GuardM D (Option (Nat × List (Nat × Bytes)))
  | position, [], writes => pure (some (position, writes))
  | position, target :: targets, writes => do
    let s ← get
    if s.journal.length ≤ position ∨ s.blocksCount ≤ target then pure none
    else do
      let block ← index s.journal position
      let data ← readBlock block
      readTargets (position + 1) targets (writes ++ [(target, data)])

/-- Scan the journal from `position` on for the transaction `seq`. -/
def scanJournal (seq : Nat) : (fuel position : Nat) → (writes : List (Nat × Bytes)) → GuardM D Found
  | 0, _, _ => throw .endless
  | fuel + 1, position, writes => do
    let s ← get
    if s.journal.length ≤ position then pure none
    else do
      let block ← index s.journal position
      let desc ← readBlock block
      let kind ← word32 desc 0
      let number ← word64 desc 4
      let count ← word32 desc 12
      let crcHead ← word32 desc 16
      let crcTail ← word32 desc 20
      if kind = journalCommit then do
        let head ← cut desc 0 20
        if number ≠ seq ∨ count ≠ writes.length ∨ crcHead ≠ crc32 (writes.map Prod.snd).flatten ∨
            crcTail ≠ crc32 head then pure none
        else pure (some writes)
      else if kind ≠ journalDescriptor ∨ number ≠ seq then pure none
      else do
        let room ← minus s.bs 24
        let head ← cut desc 0 16
        if room / 4 < count ∨ crcHead ≠ crc32 head then pure none
        else do
          let targets ← (List.range count).mapM (fun i => word32 desc (24 + i * 4))
          let body ← cut desc 24 (24 + count * 4)
          if crcTail ≠ crc32 body then pure none
          else do
            match ← readTargets (position + 1) targets writes with
            | none => pure none
            | some (position, writes) => scanJournal seq fuel position writes

/-- Write blocks to the places they belong. -/
def writeHome : List (Nat × Bytes) → GuardM D Unit
  | [] => pure ()
  | (target, data) :: entries => do
    writeRaw target data
    writeHome entries

/-- Finish the transaction a power loss left in the journal. -/
def replay : GuardM D Unit := do
  let s ← get
  let first ← index s.journal 0
  let header ← readBlock first
  let kind ← word32 header 0
  let head ← cut header 0 16
  let crc ← word32 header 16
  if kind ≠ journalHeader ∨ crc32 head ≠ crc then fail .corrupt
  else do
    let seq ← word64 header 8
    modify (fun s => { s with nextSeq := seq })
    match ← scanJournal seq s.journal.length 1 [] with
    | none => pure ()
    | some writes => do
      writeHome writes
      lift Hext.flushDevice
      modify (fun s => { s with nextSeq := (s.nextSeq + 1) % 2 ^ 64 })
      writeJournalHeader
      lift Hext.flushDevice
      modify (fun s => { s with replayed := true })
      let sb ← lift (Hext.onDevice (BlockDevice.read 2 1024))
      modify (fun s => { s with sb })

/-- Count one more mount in the superblock. -/
def stampMount : GuardM D Unit := do
  let s ← get
  let generation ← word64 s.sb (hextOffset + 20)
  let sb ← store 8 s.sb (hextOffset + 20) ((generation + 1) % 2 ^ 64)
  let mounts ← word16 sb 52
  let sb ← store 2 sb 52 ((mounts + 1) % 2 ^ 16)
  let sb ← store 4 sb 44 s.now
  modify (fun s => { s with sb })

/-- Read the tables and the journal of a volume whose layout is known. -/
def mountVolume (groupsCount journalIno : Nat) : GuardM D Unit := do
  loadGroups groupsCount
  let journalInode ← readInode journalIno
  let journal ← blockList journalInode
  modify (fun s => { s with journal })
  if journal.length < 8 then fail .corrupt
  else do
    replay
    let s ← get
    if s.replayed then do
      loadGroups groupsCount
      stampMount
    else stampMount

/-- Mount the volume on the device of a blank state. -/
def mountBlank : GuardM D Unit := do
  let sb ← lift (Hext.onDevice (BlockDevice.read 2 1024))
  let magic ← word16 sb 56
  let hext ← word32 sb hextOffset
  if magic ≠ ext2Magic ∨ hext ≠ hextMagic then fail .notHext
  else do
    let log ← word32 sb 24
    let size ← word16 sb 88
    if 2 < log ∨ size ≠ inodeSize then fail .corrupt
    else do
      let s ← get
      let bs := 1024 * 2 ^ log
      let blocksCount ← word32 sb 4
      let firstDataBlock ← word32 sb 20
      let blocksPerGroup ← word32 sb 32
      let inodesPerGroup ← word32 sb 40
      if blocksPerGroup = 0 ∨ inodesPerGroup = 0 ∨
          BlockDevice.sectors s.dev * sectorSize < blocksCount * bs then fail .corrupt
      else do
        let span ← minus blocksCount firstDataBlock
        let inodesCount ← word32 sb 0
        let journalIno ← word32 sb (hextOffset + 8)
        modify (fun s => { s with bs, sb, blocksPerGroup, inodesPerGroup, firstDataBlock, blocksCount, inodesCount })
        mountVolume (divCeil span blocksPerGroup) journalIno

/-- Mount a device. -/
def mount (dev : D) (now : Nat) : EStateM.Result (Stop Error) (Hext D) Unit := mountBlank (Hext.blank dev now)

/-! ### Sessions -/

/-- What may be asked of a mounted volume without changing it. -/
inductive Request
  | readInode (ino : Nat)
  | readDir (ino : Nat)
  | lookup (dir : Nat) (name : String)
  | resolve (path : String)
  | readFile (ino : Nat)
  | fileBlocks (ino : Nat)
  | readRange (blocks : List Nat) (size offset want : Nat)

/-- Answer a request, the answer left out. -/
def Request.serve : Request → GuardM D Unit
  | .readInode ino => do let _ ← Guarded.readInode ino
  | .readDir ino => do let _ ← Guarded.readDir ino
  | .lookup dir name => do let _ ← Guarded.lookup dir name
  | .resolve path => do let _ ← Guarded.resolve path
  | .readFile ino => do let _ ← Guarded.readFile ino
  | .fileBlocks ino => do let _ ← Guarded.fileBlocks ino
  | .readRange blocks size offset want => do let _ ← Guarded.readRange blocks size offset want

/-- Whether one of a list of requests panics, each served in the state the one before left. -/
def crashes : List Request → Hext D → Bool
  | [], _ => false
  | r :: rs, s =>
    match r.serve s with
    | .ok _ s' => crashes rs s'
    | .error x s' => x.panics || crashes rs s'

end HamixOS.HextFs.Guarded
